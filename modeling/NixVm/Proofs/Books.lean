/-
The books of the pool over whole runs.

Whatever calls are made on whatever spaces, there is always a set of trees, one for each space that
is not retired, and a number of references from elsewhere for which every refcount of the pool is
right.
-/
import NixVm.Proofs.Act

namespace NixVm

open Finset Radix GuestMemory List Option

/-- From `pl` to `pl'` leaves change only at `A`, and pinned frames stay pinned. -/
structure Calm (roots : Finset Nat) (A : Nat → Nat → Prop) (pl pl' : Pool) : Prop where
  leaf_eq : ∀ s ∈ roots, ∀ va, ¬A s va → leaf pl'.phys s va = leaf pl.phys s va
  pin : ∀ f, pl.fa.refcount f = pinned → pl'.fa.refcount f = pinned

lemma Calm.refl (roots : Finset Nat) (A : Nat → Nat → Prop) (pl : Pool) : Calm roots A pl pl :=
  ⟨fun _ _ _ _ => rfl, fun _ h => h⟩

variable {roots : Finset Nat} {A : Nat → Nat → Prop} {pl pl' : Pool}

lemma Calm.trans {pl'' : Pool}
    (h : Calm roots A pl pl') (h' : Calm roots A pl' pl'') : Calm roots A pl pl'' :=
  ⟨fun s hs va hn => (h'.leaf_eq s hs va hn).trans (h.leaf_eq s hs va hn),
    fun f hf => h'.pin f (h.pin f hf)⟩

lemma Moves.calm {held up : Nat → Nat} {B : Nat → Nat → Prop}
    (h : Moves pl roots held up A pl') (hsub : ∀ s va, A s va → B s va) : Calm roots B pl pl' :=
  ⟨fun s hs va hn => h.leaf_eq s hs va fun ha => hn (hsub s va ha), h.pin⟩

lemma CtrlIntact.calm {x : Nat} (h : CtrlIntact pl x) (hx : x ∈ roots) (hc : Calm roots A pl pl')
    (hA : ∀ c ∈ Ctrl.mappings, ¬A x c.va) : CtrlIntact pl' x := by
  intro c hmem
  have ⟨e, f, hl, hf, hp⟩ := h c hmem
  exact ⟨e, f, (hc.leaf_eq x hx c.va (hA c hmem)).trans hl, hf, hc.pin f hp⟩

/-- The books are right, and since `pl` nothing has changed outside the extent of `g`. -/
structure Kept (roots : Finset Nat) (held : Nat → Nat) (r : Nat) (g : GuestMemory) (pl : Pool)
    (st : GuestMemory × Pool) : Prop where
  good : Good st.2 roots held
  same : SameSpace g st.1
  calm : Calm roots (AtExtent g r) pl st.2

section Calls

variable {roots : Finset Nat} {held : Nat → Nat} {r : Nat} {g : GuestMemory} {pl : Pool}
  {st : GuestMemory × Pool}

lemma Kept.start (h : Good pl roots held) : Kept roots held r g pl (g, pl) :=
  ⟨h, .refl g, .refl roots _ pl⟩

section

variable (h : Kept roots held r g pl st)
include h

lemma Kept.rooted (hs : Rooted roots g.space r) : Rooted roots st.1.space r := by
  rw [h.same.space]
  exact hs

lemma Kept.base (hb : g.base % 4096 = 0) : st.1.base % 4096 = 0 := by
  rw [h.same.base]
  exact hb

lemma Kept.note {g' : GuestMemory} (hs : SameSpace st.1 g') :
    Kept roots held r g pl (g', st.2) := ⟨h.good, h.same.trans hs, h.calm⟩

lemma Kept.edit {p : Nat} (hp : p < g.npages) {up : Nat → Nat}
    {pl' : Pool} (he : Edit st.2 roots held up (At r (st.1.pageBase p)) pl') :
    Kept roots held r g pl (st.1, pl') := by
  rw [h.same.pageBase p] at he
  exact ⟨he.good, h.same, h.calm.trans (he.moves.calm (atExtent_of_page hp))⟩

end

lemma Kept.foldl {f : GuestMemory × Pool → Nat → GuestMemory × Pool} (ps : List Nat)
    (hf : ∀ st, ∀ p ∈ ps, Kept roots held r g pl st → Kept roots held r g pl (f st p)) :
    ∀ st, Kept roots held r g pl st → Kept roots held r g pl (ps.foldl f st) := by
  induction ps with
  | nil => exact fun st h => h
  | cons p ps ih =>
    intro st h
    exact ih (fun st q hq => hf st q (mem_cons_of_mem _ hq)) _
      (hf st p mem_cons_self h)

lemma map_kept (h : Good pl roots held) (hs : Rooted roots g.space r)
    (hz : g.size % 4096 = 0) (addr len : Nat) (prot : Prot) :
    Kept roots held r g pl (g.map addr len prot pl).2 := by
  by_cases hlen : len = 0
  · rw [GuestMemory.map, if_pos hlen]
    exact .start h
  cases hspan : g.pageSpan addr len with
  | error e =>
    simp only [GuestMemory.map, if_neg hlen, hspan]
    exact .start h
  | ok q =>
    rw [map_ok hlen hspan]
    refine (Kept.foldl _ (fun st p hp hst => ?_) _ (.start h)).note ⟨rfl, rfl, rfl⟩
    have hdrop := (dropPage_spec hst.good (hst.rooted hs) p).1
    exact (hst.edit (pageSpan_lt hz hspan p hp) hdrop).note ⟨rfl, rfl, rfl⟩

lemma unmap_kept (h : Good pl roots held) (hs : Rooted roots g.space r)
    (hz : g.size % 4096 = 0) (addr len : Nat) : Kept roots held r g pl (g.unmap addr len pl).2 := by
  by_cases hlen : len = 0
  · rw [unmap, if_pos hlen]
    exact .start h
  cases hspan : g.pageSpan addr len with
  | error e =>
    simp only [unmap, if_neg hlen, hspan]
    exact .start h
  | ok q =>
    rw [unmap_ok hlen hspan]
    refine (Kept.foldl _ (fun st p hp hst => ?_) _ (.start h)).note ⟨rfl, rfl, rfl⟩
    have hdrop := (dropPage_spec hst.good (hst.rooted hs) p).1
    exact (hst.edit (pageSpan_lt hz hspan p hp) hdrop).note ⟨rfl, rfl, rfl⟩

lemma backShared_kept (hs : Rooted roots g.space r) (hb : g.base % 4096 = 0)
    (ps : List Nat) : ∀ st, (∀ p ∈ ps, p < g.npages) → Kept roots held r g pl st →
      Kept roots held r g pl (backShared ps st.1 st.2).2 := by
  induction ps with
  | nil => exact fun st _ h => h
  | cons p ps ih =>
    intro st hps h
    have hedit := ensureBacked_edit h.good (h.rooted hs) (h.base hb) (st.1.prot p) p
    have hback := h.edit (hps p mem_cons_self) hedit
    have hbase : pageBase { st.1 with sharedAnon := st.1.sharedAnon.set p true } p
        = st.1.pageBase p := rfl
    simp only [backShared, hbase]
    cases hres : ensureBacked st.1.space (st.1.prot p) st.2 (st.1.pageBase p) with
    | mk ok pl' =>
      rw [hres] at hback
      have hnext : Kept roots held r g pl
          ({ st.1 with sharedAnon := st.1.sharedAnon.set p true }, pl') :=
        hback.note ⟨rfl, rfl, rfl⟩
      cases ok with
      | false => exact hnext
      | true => exact ih _ (fun q hq => hps q (mem_cons_of_mem _ hq)) hnext

lemma backed_kept (hs : Rooted roots g.space r) (hb : g.base % 4096 = 0)
    (span : GuestMemory → Nat → Nat → Except MemError (Nat × Nat)) (addr len : Nat)
    (hspan : ∀ g', SameSpace g g' → ∀ q, span g' addr len = .ok q → ∀ p ∈ pagesOf q, p < g.npages)
    (st : GuestMemory.Outcome) : Kept roots held r g pl st.2 →
    let st' : GuestMemory.Outcome := match st with
      | (.error e, g, pl) => (.error e, g, pl)
      | (.ok _, g, pl) =>
        match span g addr len with
        | .error e => (.error e, g, pl)
        | .ok q => backShared (pagesOf q) g pl
    Kept roots held r g pl st'.2 := by
  intro h
  obtain ⟨res, g', pl'⟩ := st
  cases res with
  | error e => exact h
  | ok u =>
    dsimp only
    cases hq : span g' addr len with
    | error e => exact h
    | ok q => exact backShared_kept hs hb _ (g', pl') (hspan g' h.same q hq) h

lemma mapSharedAnon_kept (h : Good pl roots held) (hs : Rooted roots g.space r)
    (hb : g.base % 4096 = 0) (hz : g.size % 4096 = 0) (addr len : Nat) (prot : Prot) :
    Kept roots held r g pl (g.mapSharedAnon addr len prot pl).2 := by
  have hmap := map_kept h hs hz addr len prot
  have hspan : ∀ g', SameSpace g g' → ∀ q, g'.pageSpan addr len = .ok q →
      ∀ p ∈ pagesOf q, p < g.npages := by
    intro g' hsame q hq
    rw [hsame.pageSpan] at hq
    exact pageSpan_lt hz hq
  unfold mapSharedAnon
  revert hmap
  generalize g.map addr len prot pl = st
  exact fun hmap => backed_kept hs hb pageSpan addr len hspan st hmap

lemma protectPages_kept (hs : Rooted roots g.space r) (prot : Prot) (ps : List Nat) :
    ∀ st, (∀ p ∈ ps, p < g.npages) → Kept roots held r g pl st →
      Kept roots held r g pl (protectPages prot ps st.1 st.2).2 := by
  induction ps with
  | nil => exact fun st _ h => h
  | cons p ps ih =>
    intro st hps h
    have hrest : ∀ q ∈ ps, q < g.npages := fun q hq => hps q (mem_cons_of_mem _ hq)
    unfold protectPages
    split
    · exact h
    dsimp only
    split
    · exact ih ({ st.1 with prot := st.1.prot.set p prot }, st.2) hrest
        (h.note ⟨rfl, rfl, rfl⟩)
    have hone : ∀ prot', Kept roots held r g pl
        (st.1, (st.1.space.protect (st.1.pageBase p) prot' false st.2).2) := fun prot' =>
      h.edit (hps p mem_cons_self)
        (protect_edit h.good (h.rooted hs) (st.1.pageBase p) prot' false).2.1
    exact ih (_, _) hrest ((hone _).note ⟨rfl, rfl, rfl⟩)

lemma protect_kept (h : Good pl roots held) (hs : Rooted roots g.space r)
    (hz : g.size % 4096 = 0) (addr len : Nat) (prot : Prot) :
    Kept roots held r g pl (g.protect addr len prot pl).2 := by
  by_cases hlen : len = 0
  · rw [protect, if_pos hlen]
    exact .start h
  cases hspan : g.pageSpan addr len with
  | error e =>
    simp only [protect, if_neg hlen, hspan]
    exact .start h
  | ok q =>
    simp only [protect, if_neg hlen, hspan]
    exact protectPages_kept hs prot _ (g, pl) (pageSpan_lt hz hspan) (.start h)

lemma backPages_kept (hs : Rooted roots g.space r) (hb : g.base % 4096 = 0)
    (ps : List Nat) : ∀ {pl' : Pool} (changed : Bool), (∀ p ∈ ps, p < g.npages) →
      Kept roots held r g pl (g, pl') →
      Kept roots held r g pl (g, (g.backPages ps changed pl').2) := by
  induction ps with
  | nil => exact fun _ _ h => h
  | cons p ps ih =>
    intro pl' changed hps h
    have hp := hps p mem_cons_self
    have hback := h.edit hp (ensureBacked_edit h.good hs hb (g.prot p) p)
    unfold backPages
    cases hres : ensureBacked g.space (g.prot p) pl' (g.pageBase p) with
    | mk ok pl1 =>
      rw [hres] at hback
      cases ok with
      | false => exact hback
      | true =>
        have hown := hback.edit hp
          (makeWritable_edit hback.good hs hb (g.prot p) p (g.sharedAnon p))
        dsimp only at hown ⊢
        cases hres1 : makeWritable g.space (g.prot p) pl1 (g.pageBase p)
            (g.sharedAnon p) with
        | mk res pl2 =>
          rw [hres1] at hown
          cases res with
          | error e => exact hown
          | ok c => exact ih _ (fun q hq => hps q (mem_cons_of_mem _ hq)) hown

section

variable (h : Good pl roots held) (hs : Rooted roots g.space r) (hb : g.base % 4096 = 0)
include h hs hb

lemma storeRange_kept {q : Nat × Nat} (hq : ∀ p ∈ pagesOf q, p < g.npages)
    (addr : Nat) (buf : List Byte) : Kept roots held r g pl (g.storeRange q addr buf pl).2 := by
  have hback := backPages_kept hs hb (pagesOf q) false hq (Kept.start h)
  unfold storeRange
  cases hres : g.backPages (pagesOf q) false pl with
  | mk res pl1 =>
    rw [hres] at hback
    cases res with
    | error e => exact hback
    | ok changed =>
      have hcopy := copyChunks_moves hs buf.length addr buf hback.good
      exact ⟨hcopy.good, ⟨rfl, rfl, rfl⟩, hback.calm.trans (hcopy.calm fun _ _ hn => hn.elim)⟩

section

variable (hz : g.size % 4096 = 0) (addr : Nat)
include hz addr

lemma write_kept (buf : List Byte) :
    Kept roots held r g pl (g.write addr buf pl).2 := by
  unfold write
  split
  · exact .start h
  split
  · exact .start h
  unfold copyIn
  split
  · exact .start h
  rename_i q hq
  exact storeRange_kept h hs hb (pageRange_lt hz hq) addr buf

lemma writeInit_kept (buf : List Byte) :
    Kept roots held r g pl (g.writeInit addr buf pl).2 := by
  unfold writeInit
  split
  · exact .start h
  rename_i q hq
  split
  · exact .start h
  · exact storeRange_kept h hs hb (pageRange_lt hz hq) addr buf

lemma demandFault_kept :
    Kept roots held r g pl (g, (g.demandFault addr pl).2) := by
  unfold demandFault
  dsimp only
  split
  · exact .start h
  rename_i p hp
  split
  · exact .start h
  split
  · exact .start h
  have hpage : pageOf addr = g.pageBase p := by
    have hidx := pageIndex_eq hp
    unfold pageOf at hidx ⊢
    unfold pageBase
    omega
  rw [hpage]
  exact (Kept.start h).edit (pageIndex_lt hz hp) (ensureBacked_edit h hs hb _ p)

lemma cowFault_kept (isWrite : Bool) :
    Kept roots held r g pl (g, (g.cowFault addr isWrite pl).2) := by
  unfold cowFault
  split
  · exact .start h
  split
  · exact .start h
  rename_i p hp
  split
  · exact .start h
  have hown := (Kept.start h).edit (pageIndex_lt hz hp)
    (makeWritable_edit h hs hb (g.prot p) p (g.sharedAnon p))
  split
  next heq =>
    rw [heq] at hown
    exact hown
  rename_i heq
  rw [heq] at hown
  exact hown

end

end

/-- The frame at `a` has a reference that lasts while `ps` are replaced. -/
def Lasting (roots : Finset Nat) (held : Nat → Nat) (r : Nat) (g : GuestMemory) (ps : List Nat)
    (pl : Pool) (a : Nat) : Prop :=
  ∃ f, a = f * 4096 ∧ (0 < held f ∨ ∃ s ∈ roots, ∃ va e, leaf pl.phys s va = some e ∧
    ptr e = some f ∧ ∀ p ∈ ps, ¬At r (g.pageBase p) s va)

lemma Lasting.data {ps : List Nat} {a : Nat} (h : Lasting roots held r g ps pl a)
    (hg : Good pl roots held) : ∃ f, a = f * 4096 ∧ f ≠ 0 ∧ Data pl roots f := by
  obtain ⟨f, rfl, hf | ⟨s, hs, va, e, hl, he, -⟩⟩ := h
  · exact ⟨f, rfl, (hg.used_of_held hf).1, hg.data_of_held hf⟩
  · exact ⟨f, rfl, (hg.used_of_leaf hs hl he).1, hg.data_of_leaf hs hl he⟩

lemma Lasting.edit {ps : List Nat} {p : Nat} {pl' : Pool} {a : Nat} {up held' : Nat → Nat}
    (h : Lasting roots held r g ps pl a) (hp : p ∈ ps)
    (he : Edit pl roots held' up (At r (g.pageBase p)) pl') : Lasting roots held r g ps pl' a := by
  obtain ⟨f, rfl, hf | ⟨s, hs, va, e, hl, hptr, haway⟩⟩ := h
  · exact ⟨f, rfl, .inl hf⟩
  · exact ⟨f, rfl, .inr ⟨s, hs, va, e, (he.leaf_eq hs (haway p hp)).trans hl, hptr, haway⟩⟩

lemma mapFramesLoop_kept (hs : Rooted roots g.space r) (hb : g.base % 4096 = 0)
    (prot : Prot) {all : List Nat} (hlt : ∀ p ∈ all, p < g.npages) (ps : List Nat) :
    ∀ (frames : List Nat) (st : GuestMemory × Pool)
      {o : GuestMemory.Outcome}, (∀ p ∈ ps, p ∈ all) → Kept roots held r g pl st →
      (∀ a ∈ frames, Lasting roots held r g all st.2 a) →
      mapFramesLoop prot ps frames st.1 st.2 = some o → Kept roots held r g pl o.2 := by
  induction ps with
  | nil =>
    intro frames st o _ h _ ho
    cases ho
    exact h
  | cons p ps ih =>
    intro frames st o hps h hall ho
    have hp := hps p mem_cons_self
    cases frames with
    | nil => cases ho
    | cons frame frames =>
      have hpage : st.1.pageBase p = g.pageBase p := h.same.pageBase p
      have hdrop := (dropPage_spec h.good (h.rooted hs) p).1
      have hkept := h.edit (hlt p hp) hdrop
      rw [hpage] at hdrop
      unfold mapFramesLoop at ho
      cases hd : st.1.dropPage p st.2 with
      | mk dropped pl1 =>
        rw [hd] at hdrop hkept
        have hlast : ∀ a ∈ frame :: frames, Lasting roots held r g all pl1 a :=
          fun a ha => (hall a ha).edit hp hdrop
        obtain ⟨f, rfl, h0, hdata⟩ := (hlast frame mem_cons_self).data hdrop.good
        have hshare := share_spec hdrop.good hs (pageBase_mod hb p) hdata h0 prot
        have hbase : st.1.base + p * 4096 = g.pageBase p := hpage
        simp only [hd, pageBase, h.same.space] at ho
        rw [hbase] at ho
        cases hres : g.space.map (g.pageBase p) (f * 4096) prot false
            (pl1.incref (f * 4096)) with
        | mk res pl2 =>
          rw [hres] at hshare
          simp only [hres] at ho
          cases res with
          | error e =>
            cases ho
            exact ⟨hshare.good, ⟨h.same.base, h.same.size, rfl⟩,
              hkept.calm.trans (hshare.moves.calm fun _ _ hn => hn.elim)⟩
          | ok old =>
            obtain ⟨-, -, hedit, -⟩ := hshare
            have hrest : ∀ a ∈ frames, Lasting roots held r g all
                (old.elim pl2 pl2.free) a := fun a ha =>
              (hlast a (mem_cons_of_mem _ ha)).edit hp hedit
            have hsub : ∀ q ∈ ps, q ∈ all := fun q hq => hps q (mem_cons_of_mem _ hq)
            have hcalm := hkept.calm.trans (hedit.moves.calm (atExtent_of_page (hlt p hp)))
            cases old with
            | none | some o =>
              refine ih frames (_, _) hsub ?_ ?_ ho
              · exact ⟨hedit.good, ⟨h.same.base, h.same.size, rfl⟩, hcalm⟩
              · exact hrest

lemma mapFrames_kept (h : Good pl roots held) (hs : Rooted roots g.space r)
    (hb : g.base % 4096 = 0) (hz : g.size % 4096 = 0) {addr : Nat} {frames : List Nat} {prot : Prot}
    {o : GuestMemory.Outcome} (hall : ∀ q, g.pageRange addr (frames.length * 4096) = .ok q →
      ∀ a ∈ frames, Lasting roots held r g (pagesOf q) pl a)
    (ho : g.mapFrames addr frames prot pl = some o) : Kept roots held r g pl o.2 := by
  unfold mapFrames at ho
  split at ho
  · cases ho
    exact .start h
  split at ho
  · cases ho
    exact .start h
  rename_i q hq
  exact mapFramesLoop_kept hs hb prot (pageRange_lt hz hq) _ frames (g, pl) (fun _ hp => hp)
    (.start h) (hall q hq) ho

/-- **Calls.**  The frames given to `map_frames` have to have references that last. -/
lemma call_kept {c : Call} {d : Done} (h : Good pl roots held)
    (hs : Rooted roots g.space r) (hb : g.base % 4096 = 0) (hz : g.size % 4096 = 0)
    (hframes : ∀ addr frames prot, c = .mapFrames addr frames prot →
      ∀ q, g.pageRange addr (frames.length * 4096) = .ok q →
        ∀ a ∈ frames, Lasting roots held r g (pagesOf q) pl a)
    (hd : c.run g pl = some d) : Kept roots held r g pl d.2 := by
  have hstart : Kept roots held r g pl (g, pl) := .start h
  cases c with
  | map addr len prot =>
    cases hd
    exact map_kept h hs hz addr len prot
  | mapSharedAnon addr len prot =>
    cases hd
    exact mapSharedAnon_kept h hs hb hz addr len prot
  | mapFrames addr frames prot =>
    obtain ⟨o, ho, rfl⟩ := map_eq_some_iff.mp hd
    exact mapFrames_kept h hs hb hz (hframes addr frames prot rfl) ho
  | protect addr len prot =>
    cases hd
    exact protect_kept h hs hz addr len prot
  | unmap addr len =>
    cases hd
    exact unmap_kept h hs hz addr len
  | write addr buf =>
    cases hd
    exact write_kept h hs hb hz addr buf
  | writeInit addr buf =>
    cases hd
    exact writeInit_kept h hs hb hz addr buf
  | demandFault addr =>
    cases hd
    exact demandFault_kept h hs hb hz addr
  | cowFault addr isWrite =>
    cases hd
    exact cowFault_kept h hs hb hz addr isWrite
  | setForkPolicy addr len policy =>
    cases hd
    refine hstart.note ?_
    unfold setForkPolicy
    split
    · exact .refl g
    split
    · exact .refl g
    split
    · exact .refl g
    · exact ⟨rfl, rfl, rfl⟩
  | markFileBacked addr len =>
    cases hd
    refine hstart.note ?_
    unfold markFileBacked
    split
    · exact .refl g
    · exact ⟨rfl, rfl, rfl⟩
  | setLocked addr len locked =>
    cases hd
    refine hstart.note ?_
    unfold setLocked
    split
    · exact .refl g
    split
    · exact .refl g
    · exact ⟨rfl, rfl, rfl⟩
  | lockAll current future | unlockAll =>
    cases hd
    exact hstart.note ⟨rfl, rfl, rfl⟩

end Calls

section Trees

variable {pl : Pool} {roots : Finset Nat} {held : Nat → Nat} {r : Nat} {s : AddrSpace}

lemma Rooted.mono {roots' : Finset Nat} (h : Rooted roots s r) (hsub : r ∈ roots → r ∈ roots') :
    Rooted roots' s r := ⟨h.pml4, h.mem.imp_right hsub⟩

section

variable (h : Good pl roots held)
include h

lemma destroy_good (hs : Rooted roots s r) :
    ∃ roots', Good (s.destroy pl) roots' held ∧ ∀ t ∈ roots, t ≠ r → t ∈ roots' := by
  rcases hs.mem with rfl | hr
  · have hzero : s.pml4 = 0 := hs.pml4.trans (Nat.zero_mul _)
    rw [AddrSpace.destroy, if_pos hzero]
    exact ⟨roots, h, fun t ht _ => ht⟩
  · exact ⟨roots.erase r, (destroy_spec h hr hs.pml4).good,
      fun t ht hne => Finset.mem_erase.mpr ⟨hne, ht⟩⟩

variable {pl' : Pool} {g : GuestMemory}

lemma installKstack_good {k : Nat}
    (hs : Rooted roots s r) (hk : installKstack s pl = some (k, pl')) :
    ∃ held', (∀ f, held f ≤ held' f) ∧ Good pl' roots held' := by
  have hspec := installKstack_spec h hs
  rw [hk] at hspec
  obtain ⟨held', hle, hedit, -⟩ := hspec
  exact ⟨held', hle, hedit.good⟩

lemma furnish {k : Nat} (hs : Rooted roots s r)
    (hk : installKstack s (Ctrl.mapInto s pl) = some (k, pl')) :
    ∃ held', (∀ f, held f ≤ held' f) ∧ Good pl' roots held' := by
  obtain ⟨held1, hle1, hedit, -⟩ := mapInto_spec h hs
  have ⟨held2, hle2, hgood⟩ := installKstack_good hedit.good hs hk
  exact ⟨held2, fun f => le_trans (hle1 f) (hle2 f), hgood⟩

omit h in
lemma foldl_good {f : Pool → Nat → Pool}
    (hf : ∀ pl p, Good pl roots held → Good (f pl p) roots held) (ps : List Nat) :
    ∀ pl, Good pl roots held → Good (ps.foldl f pl) roots held := by
  induction ps with
  | nil => exact fun pl h => h
  | cons p ps ih => exact fun pl h => ih _ (hf pl p h)

lemma reshare_good {x : Nat}
    (hg : Rooted roots g.space r) (hs : Rooted roots s x) : Good (g.reshare s pl) roots held := by
  refine foldl_good (fun pl p h => ?_) _ pl h
  split
  · have hone := (protect_edit h hg (g.pageBase p) (g.prot p) false).2.1.good
    exact (protect_edit hone hs (g.pageBase p) (g.prot p) false).2.1.good
  · exact h

lemma dropPolicy_good (hs : Rooted roots s r) : Good (g.dropPolicy s pl) roots held :=
  foldl_good (fun _ _ h => (dropLeaf_spec h hs _).2.1.good) _ pl h

/-- **`try_fork`.**  The child has a tree of its own. -/
lemma tryFork_good {g' : GuestMemory} {child : Option GuestMemory} (hs : Rooted roots g.space r)
    (hf : g.tryFork pl = some (child, g', pl')) :
    SameSpace g g' ∧ ∃ roots' held', (∀ f, held f ≤ held' f) ∧ roots ⊆ roots' ∧
      Good pl' roots' held' ∧ ∀ c, child = some c →
        (c.base = g.base ∧ c.size = g.size) ∧
          ∃ x, x ∉ roots ∧ x ≠ 0 ∧ x ∈ roots' ∧ c.space.pml4 = x * 4096 := by
  have hspec := forkCow_spec h hs.mem hs.pml4
  unfold tryFork at hf
  cases hres : g.space.forkCow pl with
  | mk res pl1 =>
    rw [hres] at hspec
    simp only [hres] at hf
    cases res with
    | none =>
      cases hf
      exact ⟨.refl g, roots, held, fun _ => le_rfl, fun _ h => h, hspec.good, nofun⟩
    | some c =>
      obtain ⟨x, rfl, hforked⟩ := hspec
      dsimp only at hf
      have hnew : Rooted (insert x roots) ⟨x * 4096⟩ x :=
        ⟨rfl, .inr (Finset.mem_insert_self x roots)⟩
      have hold : Rooted (insert x roots) g.space r := hs.mono Finset.mem_insert_of_mem
      obtain ⟨held1, hle1, hedit1, -⟩ := mapInto_spec (hforked.good.setUseReserve true) hold
      obtain ⟨held2, hle2, hedit2, -⟩ := mapInto_spec hedit1.good hnew
      split at hf
      · cases hf
      rename_i hk1
      have ⟨held3, hle3, hgood3⟩ := installKstack_good hedit2.good hold hk1
      split at hf
      · cases hf
      rename_i hk2
      have ⟨held4, hle4, hgood4⟩ := installKstack_good hgood3 hnew hk2
      cases hf
      refine ⟨⟨rfl, rfl, rfl⟩, insert x roots, held4, fun f => ?_,
        Finset.subset_insert x roots, ?_, fun c hc => ?_⟩
      · exact (hle1 f).trans ((hle2 f).trans ((hle3 f).trans (hle4 f)))
      · exact dropPolicy_good (reshare_good (hgood4.setUseReserve false) hold hnew) hnew
      cases hc
      exact ⟨⟨rfl, rfl⟩, x, hforked.new, hforked.ne_zero, Finset.mem_insert_self x roots, rfl⟩

/-- **`exec_reset`.**  A new tree takes the place of the old one. -/
lemma execReset_good {o : GuestMemory × Pool}
    (hs : Rooted roots g.space r) (ho : g.execReset pl = some o) :
    (o.1.base = g.base ∧ o.1.size = g.size) ∧
      ∃ roots' held' x, (∀ f, held f ≤ held' f) ∧ Good o.2 roots' held' ∧
      x ∉ roots ∧ x ≠ 0 ∧ x ∈ roots' ∧ o.1.space.pml4 = x * 4096 ∧
      ∀ t ∈ roots, t ≠ r → t ∈ roots' := by
  unfold execReset AddrSpace.new at ho
  cases ha : (pl.setUseReserve true).alloc with
  | none =>
    simp only [ha] at ho
    cases ho
  | some res =>
    obtain ⟨pa, pl1⟩ := res
    obtain ⟨x, rfl, hp⟩ := (h.setUseReserve true).plant ha
    simp only [ha] at ho
    have hnew : Rooted (insert x roots) ⟨x * 4096⟩ x :=
      ⟨rfl, .inr (Finset.mem_insert_self x roots)⟩
    have hold : Rooted (insert x roots) g.space r := hs.mono Finset.mem_insert_of_mem
    split at ho
    · cases ho
    rename_i hk
    have ⟨held1, hle, hgood⟩ := furnish hp.good hnew hk
    have ⟨roots', hgood', hsub⟩ := destroy_good hgood hold
    cases ho
    have hne : x ≠ r := by
      rintro rfl
      exact hs.mem.elim hp.ne_zero hp.new
    exact ⟨⟨rfl, rfl⟩, roots', held1, x, hle, hgood'.setUseReserve false, hp.new, hp.ne_zero,
      hsub x (Finset.mem_insert_self x roots) hne, rfl,
      fun t ht hne => hsub t (Finset.mem_insert_of_mem ht) hne⟩

end

end Trees

/-- `held`, and one reference for each entry of `l`. -/
def bumps (held : Nat → Nat) (l : List Nat) : Nat → Nat := fun f => held f + l.count (f * 4096)

def Whole (l : List Nat) : Prop := ∀ a ∈ l, ∃ f, a = f * 4096

section Frames

variable {pl : Pool} {roots : Finset Nat} {held : Nat → Nat}

lemma bumps_cons (held : Nat → Nat) (f : Nat) (l : List Nat) :
    bumps held (f * 4096 :: l) = bump (bumps held l) f := by
  funext x
  by_cases hx : f = x
  · subst hx
    simp only [bumps, bump, count_cons_self, if_true, add_assoc]
  · have hne : f * 4096 ≠ x * 4096 := by omega
    simp only [bumps, bump, count_cons_of_ne hne, if_neg hx, add_zero]

lemma bumps_append (held : Nat → Nat) (l l' : List Nat) :
    bumps held (l ++ l') = bumps (bumps held l) l' := by
  funext x
  simp only [bumps, count_append, add_assoc]

lemma bumps_concat (held : Nat → Nat) (l : List Nat) (f : Nat) :
    bumps held (l ++ [f * 4096]) = bump (bumps held l) f := by
  rw [bumps_append, bumps_cons]
  rfl

lemma releaseFrames_good (l : List Nat) : ∀ {pl : Pool}, Whole l → Good pl roots (bumps held l) →
    Good (releaseFrames l pl) roots held := by
  induction l with
  | nil => exact fun _ h => h
  | cons a l ih =>
    intro pl hl h
    obtain ⟨f, rfl⟩ := hl a mem_cons_self
    rw [bumps_cons] at h
    exact ih (fun b hb => hl b (mem_cons_of_mem _ hb)) h.release

lemma allocFrames_good (n : Nat) : ∀ {pl : Pool} (out : List Nat), Whole out →
    Good pl roots (bumps held out) → match allocFrames n out pl with
    | (some frames, pl') => Whole frames ∧ Good pl' roots (bumps held frames)
    | (none, pl') => Good pl' roots held := by
  induction n with
  | zero => exact fun out hout h => ⟨hout, h⟩
  | succ n ih =>
    intro pl out hout h
    unfold allocFrames
    cases ha : pl.alloc with
    | none => exact releaseFrames_good out hout h
    | some res =>
      obtain ⟨pa, pl'⟩ := res
      obtain ⟨f, rfl, -, hgood⟩ := h.alloc ha
      rw [← bumps_concat] at hgood
      refine ih (out ++ [f * 4096]) (fun a ha => ?_) hgood
      rcases List.mem_append.mp ha with ha | ha
      · exact hout a ha
      · exact ⟨f, List.mem_singleton.mp ha⟩

lemma releaseFrames_calm (l : List Nat) : ∀ {pl : Pool}, Whole l → Good pl roots (bumps held l) →
    Calm roots Nowhere pl (releaseFrames l pl) := by
  induction l with
  | nil => exact fun _ _ => .refl roots ..
  | cons a l ih =>
    intro pl hl h
    obtain ⟨f, rfl⟩ := hl a mem_cons_self
    rw [bumps_cons] at h
    have hone : Calm roots Nowhere pl (pl.free (f * 4096)) :=
      ⟨fun _ _ _ _ => rfl, fun x hx => (h.release_pin x).mpr hx⟩
    exact hone.trans (ih (fun b hb => hl b (mem_cons_of_mem _ hb)) h.release)

lemma allocFrames_calm (n : Nat) : ∀ {pl : Pool} (out : List Nat), Whole out →
    Good pl roots (bumps held out) → Calm roots Nowhere pl (allocFrames n out pl).2 := by
  induction n with
  | zero => exact fun _ _ _ => .refl roots ..
  | succ n ih =>
    intro pl out hout h
    unfold allocFrames
    cases ha : pl.alloc with
    | none => exact releaseFrames_calm out hout h
    | some res =>
      obtain ⟨pa, pl'⟩ := res
      obtain ⟨f, rfl, hfresh, hgood⟩ := h.alloc ha
      rw [← bumps_concat] at hgood
      have hone : Calm roots Nowhere pl pl' := by
        refine ⟨fun s hs va _ => (hfresh.steady h).quiet s hs va, fun x hx => ?_⟩
        have hne := hfresh.ne_of_used (g := x) (by rw [hx]; decide)
        rw [hfresh.rc_other hne, hx]
      refine hone.trans (ih (out ++ [f * 4096]) (fun a ha => ?_) hgood)
      rcases List.mem_append.mp ha with ha | ha
      · exact hout a ha
      · exact ⟨f, List.mem_singleton.mp ha⟩

end Frames

namespace Sys

/-- Frames are mapped only while there is a reference that `map_frames` does not take away, and
only those handed out are taken back. -/
def Lawful (s : Sys) : Op → Prop
  | .call i (.mapFrames addr frames _) => ∀ a ∈ frames, a ∈ s.held ∨
      ∃ j g va t, s.spaces[j]? = some g ∧ g.space.translate va s.pool.phys = some t ∧
        a = pageOf t.paddr ∧ (j = i → ∀ q, g.pageRange addr (frames.length * 4096) = .ok q →
          ∀ p ∈ GuestMemory.pagesOf q, path va ≠ path (g.pageBase p))
  | .releaseFrames frames => ∀ a, frames.count a ≤ s.held.count a
  | _ => True

/-- The books are right for `roots`, with the references in `lost` never given back. -/
structure Sane (s : Sys) (roots : Finset Nat) (lost : Nat → Nat) : Prop where
  good : Good s.pool roots (bumps lost s.held)
  whole : Whole s.held
  base : ∀ (i : Nat) g, s.spaces[i]? = some g → g.base % 4096 = 0 ∧ g.size % 4096 = 0
  rooted : ∀ (i : Nat) g, s.spaces[i]? = some g → ∃ r, Rooted roots g.space r
  apart : ∀ (i j : Nat) g g', s.spaces[i]? = some g → s.spaces[j]? = some g' →
    g.space.pml4 = g'.space.pml4 → g.space.pml4 = 0 ∨ i = j

variable {s : Sys} {roots : Finset Nat} {lost : Nat → Nat} {i : Nat} {g : GuestMemory}

variable {g' : GuestMemory} {pl' : Pool} {x : Nat} {frames : List Nat} {b : Bool} {s' : Sys}

lemma getElem?_put {j : Nat} {pl : Pool}
    (h : (s.put i g pl).spaces[j]? = some g') : j = i ∧ g' = g ∨ j ≠ i ∧ s.spaces[j]? = some g' := by
  have h : (s.spaces.set i g)[j]? = some g' := h
  rw [List.getElem?_set] at h
  split at h
  next hij =>
    split at h
    · cases h
      exact .inl ⟨hij.symm, rfl⟩
    · cases h
  next hij => exact .inr ⟨fun hji => hij hji.symm, h⟩

lemma forall_put {Q : GuestMemory → Prop} {pl : Pool}
    (h : ∀ (j : Nat) g1, s.spaces[j]? = some g1 → Q g1) (hg : Q g) (j : Nat) (g1 : GuestMemory)
    (hj : (s.put i g pl).spaces[j]? = some g1) : Q g1 := by
  rcases getElem?_put hj with ⟨-, rfl⟩ | ⟨-, hj⟩
  · exact hg
  · exact h j g1 hj

lemma getElem?_singleton_eq {c : GuestMemory} {j : Nat} (h : [c][j]? = some g) : j = 0 ∧ g = c := by
  cases j with
  | zero =>
    cases h
    exact ⟨rfl, rfl⟩
  | succ j => cases h

lemma exists_bumps {held : Nat → Nat} {l : List Nat}
    (h : ∀ f, bumps lost l f ≤ held f) : ∃ lost', bumps lost' l = held := by
  refine ⟨fun f => held f - l.count (f * 4096), funext fun f => ?_⟩
  have hle := h f
  simp only [bumps] at hle ⊢
  omega

section

variable (h : Sane s roots lost)
include h

lemma Sane.stay (hi : s.spaces[i]? = some g)
    (hsame : SameSpace g g') (hgood : Good pl' roots (bumps lost s.held)) :
    Sane (s.put i g' pl') roots lost where
  good := hgood
  whole := h.whole
  base := forall_put h.base (by rw [hsame.base, hsame.size]; exact h.base i g hi)
  rooted := forall_put h.rooted (by rw [hsame.space]; exact h.rooted i g hi)
  apart := by
    intro j k g1 g2 hj hk heq
    rcases getElem?_put hj with ⟨rfl, rfl⟩ | ⟨-, hj1⟩
    · rcases getElem?_put hk with ⟨rfl, rfl⟩ | ⟨-, hk1⟩
      · exact .inr rfl
      rw [hsame.space] at heq ⊢
      exact h.apart j k g g2 hi hk1 heq
    rcases getElem?_put hk with ⟨rfl, rfl⟩ | ⟨-, hk1⟩
    · rw [hsame.space] at heq
      exact h.apart j k g1 g hj1 hi heq
    · exact h.apart j k g1 g2 hj1 hk1 heq

lemma Sane.move (hi : s.spaces[i]? = some g) {roots' : Finset Nat} {lost' : Nat → Nat} {r : Nat}
    (hr : Rooted roots g.space r) (hbase : g'.base = g.base) (hsize : g'.size = g.size)
    (hgood : Good pl' roots' (bumps lost' s.held)) (hx : Rooted roots' g'.space x)
    (hnew : x = 0 ∨ x ∉ roots) (hsub : ∀ t ∈ roots, t ≠ r → t ∈ roots') :
    Sane (s.put i g' pl') roots' lost' where
  good := hgood
  whole := h.whole
  base := forall_put h.base (by rw [hbase, hsize]; exact h.base i g hi)
  rooted := by
    intro j g1 hj
    rcases getElem?_put hj with ⟨rfl, rfl⟩ | ⟨hne, hj⟩
    · exact ⟨x, hx⟩
    have ⟨t, ht⟩ := h.rooted j g1 hj
    refine ⟨t, ht.pml4, ht.mem.elim .inl fun hmem => ?_⟩
    by_cases h0 : t = 0
    · exact .inl h0
    refine .inr (hsub t hmem fun htr => ?_)
    subst htr
    rcases h.apart j i g1 g hj hi (ht.pml4.trans hr.pml4.symm) with hz | hji
    · rw [ht.pml4] at hz
      omega
    · exact hne hji
  apart := by
    -- the new tree is nobody else's
    have hother : ∀ (j : Nat) g1, s.spaces[j]? = some g1 → g1.space.pml4 = g'.space.pml4 →
        g'.space.pml4 = 0 := by
      intro j g1 hj heq
      have ⟨t, ht⟩ := h.rooted j g1 hj
      rw [ht.pml4, hx.pml4] at heq
      obtain rfl : t = x := by omega
      rw [hx.pml4]
      rcases hnew with rfl | hnew
      · exact Nat.zero_mul _
      have hzero := ht.mem.resolve_right hnew
      omega
    intro j k g1 g2 hj hk heq
    rcases getElem?_put hj with ⟨rfl, rfl⟩ | ⟨-, hj1⟩
    · rcases getElem?_put hk with ⟨rfl, rfl⟩ | ⟨-, hk1⟩
      · exact .inr rfl
      · exact .inl (hother k g2 hk1 heq.symm)
    rcases getElem?_put hk with ⟨rfl, rfl⟩ | ⟨-, hk1⟩
    · exact .inl (heq.trans (hother j g1 hj1 heq))
    · exact h.apart j k g1 g2 hj1 hk1 heq

lemma Sane.lasting (hi : s.spaces[i]? = some g) {r : Nat}
    (hr : Rooted roots g.space r) {addr : Nat} {prot : Prot}
    (hop : s.Lawful (.call i (.mapFrames addr frames prot))) {q : Nat × Nat}
    (hq : g.pageRange addr (frames.length * 4096) = .ok q) :
    ∀ a ∈ frames, Lasting roots (bumps lost s.held) r g (pagesOf q) s.pool a := by
  intro a ha
  rcases hop a ha with hheld | ⟨j, g1, va, t, hj, ht, rfl, haway⟩
  · obtain ⟨f, rfl⟩ := h.whole a hheld
    refine ⟨f, rfl, .inl ?_⟩
    have hpos := count_pos_iff.mpr hheld
    unfold bumps
    omega
  have ⟨x, hx⟩ := h.rooted j g1 hj
  rw [translate_eq hx.pml4] at ht
  obtain ⟨e, hl, rfl⟩ := map_eq_some_iff.mp ht
  have ⟨f, hf⟩ := leaf_present hl
  have hmem := h.good.mem_of_leaf hx hl
  refine ⟨f, ?_, .inr ⟨x, hmem, va, e, hl, hf, ?_⟩⟩
  · rw [pageOf_paddr, (ptr_eq_some.mp hf).2]
  rintro p hp ⟨rfl, hpath⟩
  rcases h.apart j i g1 g hj hi (hx.pml4.trans hr.pml4.symm) with hz | rfl
  · have hroot := (h.good.rc_of_table ⟨x, hmem, tab_self 3 x⟩).1
    rw [hx.pml4] at hz
    omega
  rw [hi] at hj
  cases hj
  exact haway rfl q hq p hp hpath

lemma Sane.mono {roots' : Finset Nat}
    {lost' : Nat → Nat} (hgood : Good pl' roots' (bumps lost' s.held)) (hsub : roots ⊆ roots') :
    Sane { s with pool := pl' } roots' lost' where
  good := hgood
  whole := h.whole
  base := h.base
  rooted := fun j g1 hj => by
    have ⟨r, hr⟩ := h.rooted j g1 hj
    exact ⟨r, hr.mono fun hmem => hsub hmem⟩
  apart := h.apart

lemma Sane.append {c : GuestMemory}
    (hbase : c.base % 4096 = 0 ∧ c.size % 4096 = 0) (hx : x ∈ roots) (hc : c.space.pml4 = x * 4096)
    (hnew : ∀ (j : Nat) g, s.spaces[j]? = some g → g.space.pml4 ≠ c.space.pml4) :
    Sane { s with spaces := s.spaces ++ [c] } roots lost := by
  have hget : ∀ {j : Nat} {g1}, (s.spaces ++ [c])[j]? = some g1 →
      s.spaces[j]? = some g1 ∨ j = s.spaces.length ∧ g1 = c := by
    intro j g1 hj
    rw [List.getElem?_append] at hj
    split at hj
    · exact .inl hj
    have ⟨hz, heq⟩ := getElem?_singleton_eq hj
    exact .inr ⟨by omega, heq⟩
  refine ⟨h.good, h.whole, fun j g1 hj => ?_, fun j g1 hj => ?_, fun j k g1 g2 hj hk heq => ?_⟩
  · rcases hget hj with hj | ⟨-, rfl⟩
    · exact h.base j g1 hj
    · exact hbase
  · rcases hget hj with hj | ⟨-, rfl⟩
    · exact h.rooted j g1 hj
    · exact ⟨x, hc, .inr hx⟩
  rcases hget hj with hj1 | ⟨hjl, rfl⟩
  · rcases hget hk with hk1 | ⟨-, rfl⟩
    · exact h.apart j k g1 g2 hj1 hk1 heq
    · exact absurd heq (hnew j g1 hj1)
  rcases hget hk with hk1 | ⟨hkl, -⟩
  · exact absurd heq.symm (hnew k g2 hk1)
  · exact .inr (hjl.trans hkl.symm)

lemma Sane.call {c : Call}
    (hop : s.Lawful (.call i c)) (hs : s.step (.call i c) = some (b, s')) : Sane s' roots lost := by
  simp only [Sys.step] at hs
  split at hs
  · cases hs
  rename_i g hi
  have ⟨d, hd, heq⟩ := map_eq_some_iff.mp hs
  cases heq
  have ⟨r, hr⟩ := h.rooted i g hi
  have hkept := call_kept h.good hr (h.base i g hi).1 (h.base i g hi).2 (fun addr frames prot hc q hq => by
    subst hc
    exact h.lasting hi hr hop hq) hd
  exact h.stay hi hkept.same hkept.good

lemma Sane.tryFork
    (hs : s.step (.tryFork i) = some (b, s')) : ∃ roots' lost', Sane s' roots' lost' := by
  simp only [Sys.step] at hs
  split at hs
  · cases hs
  rename_i g hi
  have ⟨r, hr⟩ := h.rooted i g hi
  split at hs
  · cases hs
  next g' pl' hfork =>
    cases hs
    obtain ⟨hsame, roots', held', hle, hsub, hgood, -⟩ := tryFork_good h.good hr hfork
    obtain ⟨lost', rfl⟩ := exists_bumps hle
    exact ⟨roots', lost', (h.mono hgood hsub).stay hi hsame hgood⟩
  rename_i child g' pl' hfork
  cases hs
  have ⟨hsame, roots', held', hle, hsub, hgood, hchild⟩ := tryFork_good h.good hr hfork
  obtain ⟨lost', rfl⟩ := exists_bumps hle
  have ⟨hbase, x, hnew, h0, hx, hpml⟩ := hchild child rfl
  have hstay := (h.mono hgood hsub).stay hi hsame hgood
  refine ⟨roots', lost', hstay.append ?_ hx hpml fun j g1 hj heq => ?_⟩
  · rw [hbase.1, hbase.2]
    exact h.base i g hi
  have ⟨t, ht⟩ := forall_put h.rooted (by rw [hsame.space]; exact ⟨r, hr⟩) j g1 hj
  rw [ht.pml4, hpml] at heq
  obtain rfl : t = x := by omega
  exact ht.mem.elim h0 hnew

lemma Sane.execReset
    (hs : s.step (.execReset i) = some (b, s')) : ∃ roots' lost', Sane s' roots' lost' := by
  simp only [Sys.step] at hs
  split at hs
  · cases hs
  rename_i g hi
  have ⟨o, ho, heq⟩ := map_eq_some_iff.mp hs
  cases heq
  have ⟨r, hr⟩ := h.rooted i g hi
  obtain ⟨hbase, roots', held', x, hle, hgood, hnew, -, hx, hpml, hsub⟩ :=
    execReset_good h.good hr ho
  obtain ⟨lost', rfl⟩ := exists_bumps hle
  exact ⟨roots', lost', h.move hi hr hbase.1 hbase.2 hgood ⟨hpml, .inr hx⟩ (.inr hnew) hsub⟩

lemma Sane.retire
    (hs : s.step (.retire i) = some (b, s')) : ∃ roots' lost', Sane s' roots' lost' := by
  simp only [Sys.step] at hs
  split at hs
  · cases hs
  rename_i g hi
  cases hs
  have ⟨r, hr⟩ := h.rooted i g hi
  have ⟨roots', hgood, hsub⟩ := destroy_good h.good hr
  have hnone : Rooted roots' AddrSpace.retired 0 := ⟨rfl, .inl rfl⟩
  exact ⟨roots', lost, h.move hi hr rfl rfl hgood hnone (.inl rfl) hsub⟩

lemma Sane.allocFrames {n : Nat}
    (hs : s.step (.allocFrames n) = some (b, s')) : Sane s' roots lost := by
  have hspec := allocFrames_good n [] (fun _ ha => nomatch ha)
    (show Good s.pool roots (bumps (bumps lost s.held) []) from h.good)
  simp only [Sys.step] at hs
  cases hres : GuestMemory.allocFrames n [] s.pool with
  | mk res pl' =>
    rw [hres] at hspec
    simp only [hres] at hs
    cases res with
    | none =>
      cases hs
      exact ⟨hspec, h.whole, h.base, h.rooted, h.apart⟩
    | some frames =>
      cases hs
      obtain ⟨hwhole, hgood⟩ := hspec
      rw [← bumps_append] at hgood
      exact ⟨hgood, fun a ha => (mem_append.mp ha).elim (h.whole a) (hwhole a), h.base,
        h.rooted, h.apart⟩

lemma Sane.release_ready (hop : ∀ a, frames.count a ≤ s.held.count a) :
    Whole frames ∧ Good s.pool roots (bumps (bumps lost (s.held.diff frames)) frames) := by
  have hsplit : bumps lost s.held = bumps (bumps lost (s.held.diff frames)) frames := by
    funext f
    have hle := hop (f * 4096)
    simp only [bumps, count_diff]
    omega
  refine ⟨fun a ha => h.whole a ?_, hsplit ▸ h.good⟩
  have hpos := count_pos_iff.mpr ha
  have hle := hop a
  exact count_pos_iff.mp (by omega)

lemma Sane.releaseFrames (hop : ∀ a, frames.count a ≤ s.held.count a)
    (hs : s.step (.releaseFrames frames) = some (b, s')) : Sane s' roots lost := by
  have ⟨hwhole, hgood⟩ := h.release_ready hop
  cases hs
  exact ⟨releaseFrames_good frames hwhole hgood,
    fun a ha => h.whole a ((diff_sublist s.held frames).subset ha), h.base, h.rooted, h.apart⟩

lemma Sane.step {op : Op} (hop : s.Lawful op)
    (hs : s.step op = some (b, s')) : ∃ roots' lost', Sane s' roots' lost' := by
  cases op with
  | call i c => exact ⟨roots, lost, h.call hop hs⟩
  | tryFork i => exact h.tryFork hs
  | execReset i => exact h.execReset hs
  | retire i => exact h.retire hs
  | allocFrames n => exact ⟨roots, lost, h.allocFrames hs⟩
  | releaseFrames frames => exact ⟨roots, lost, h.releaseFrames hop hs⟩

end

lemma Sane.of_booted {image : Nat → Byte} {base vsize : Nat} {pl : Pool}
    (hb : Booted image base vsize g pl x) : Sane ⟨pl, [g], []⟩ {x} 0 := by
  obtain ⟨k, rfl⟩ := hb.space
  refine ⟨hb.good, nofun, fun j g1 hj => ?_, fun j g1 hj => ?_, fun j k g1 g2 hj hk _ => ?_⟩
  · obtain ⟨-, rfl⟩ := getElem?_singleton_eq hj
    refine ⟨hb.base, ?_⟩
    show u64 (nextMultipleOf (max vsize 4096) 16384) % 4096 = 0
    unfold u64 nextMultipleOf
    omega
  · obtain ⟨-, rfl⟩ := getElem?_singleton_eq hj
    exact ⟨x, rfl, .inr (Finset.mem_singleton_self x)⟩
  · exact .inr ((getElem?_singleton_eq hj).1.trans (getElem?_singleton_eq hk).1.symm)

/-- **Runs.**  In every state there are trees for which the books are right. -/
lemma Sane.run {ceiling : Nat} {image : Nat → Byte} {base vsize physBytes : Nat} {s0 : Sys}
    (hboot : boot ceiling image base vsize physBytes = some s0)
    (hrun : Relation.ReflTransGen (Next Lawful) s0 s) : ∃ roots lost, Sane s roots lost := by
  induction hrun with
  | refl =>
    obtain ⟨⟨g, pl⟩, hr, rfl⟩ := map_eq_some_iff.mp hboot
    have ⟨x, hb⟩ := newSplit_spec hr
    exact ⟨{x}, 0, .of_booted hb⟩
  | tail _ hlast ih =>
    obtain ⟨op, b, hop, hs⟩ := hlast
    obtain ⟨roots, lost, h⟩ := ih
    exact h.step hop hs

end Sys

end NixVm
